import ProtoRegistry.Model.Auth
import ProtoRegistry.Verify.Admission

/-!
# Access

What a file of tokens grants. A line has a token, a subject and a role, and the file is read exactly when its lines
are such lines, comments or blank, and no token stands in two of them. A server that does not take anonymous writes is
changed only by requests that bear a token of the file, and the versions of the builtins only by one whose line has the
role `admin`.
-/

namespace ProtoRegistry

/-! ## Words -/

theorem fields_cons_space {text : List Char} (hc : isSpace c = true) : fields (c :: text) = fields text := by
  have hsplit := List.splitOnP_append_cons [] text hc
  rw [List.nil_append, List.splitOnP_nil] at hsplit
  rw [fields, hsplit, List.singleton_append, List.filter_cons_of_neg (by simp), fields]

theorem fields_append_space {text : List Char} (hc : isSpace c = true) : fields (text ++ [c]) = fields text := by
  rw [fields, List.splitOnP_append_cons text [] hc, List.splitOnP_nil, List.filter_append,
    List.filter_cons_of_neg (by simp), List.filter_nil, List.append_nil, fields]

theorem fields_trimSpace (text : List Char) : fields (trimSpace text) = fields text := by
  have hleft : ∀ text, fields (text.dropWhile isSpace) = fields text := by
    intro text
    induction text with
    | nil => rfl
    | cons c text ih =>
      rw [List.dropWhile_cons]
      split
      · next hc => rw [ih, fields_cons_space hc]
      · rfl
  have hright : ∀ text, fields (text.rdropWhile isSpace) = fields text := by
    intro text
    induction text using List.reverseRecOn with
    | nil => rfl
    | append_singleton text c ih =>
      rw [List.rdropWhile_concat]
      split
      · next hc => rw [ih, fields_append_space hc]
      · rfl
  rw [trimSpace, hright, hleft]

theorem fields_cons (text : List Char) (hc : isSpace c = false) :
    ∃ word words, fields (c :: text) = String.ofList (c :: word) :: words := by
  obtain ⟨word, words, hsplit⟩ := List.exists_cons_of_ne_nil (List.splitOnP_ne_nil isSpace text)
  refine ⟨word, (words.filter (· ≠ [])).map String.ofList, ?_⟩
  rw [fields, List.splitOnP_cons_eq_if_modifyHead, if_neg (by simp [hc]), hsplit, List.modifyHead_cons,
    List.filter_cons_of_pos (by simp), List.map_cons]

theorem head_trimSpace {text rest : List Char} (h : trimSpace text = c :: rest) : isSpace c = false := by
  have hpre : trimSpace text <+: text.dropWhile isSpace := List.rdropWhile_prefix _ _
  rw [h] at hpre
  obtain ⟨tail, htail⟩ := hpre
  have hne : text.dropWhile isSpace ≠ [] := by
    rw [← htail]
    exact List.cons_ne_nil _ _
  have hhead := List.head_dropWhile_not isSpace hne
  simpa [← htail] using hhead

/-! ## Lines -/

/-- The line has the token, and the identity that it stands for. -/
def TokenLine (line token : String) (id : Identity) : Prop :=
  ∃ rest, fields line.toList = token :: id.subject :: rest ∧ token.toList.head? ≠ some '#' ∧
    rest.head?.getD "user" = if id.admin then "admin" else "user"

def SkippedLine (line : String) : Prop := ∀ word ∈ (fields line.toList).head?, word.toList.head? = some '#'

variable {line token token' : String} {id id' : Identity}

theorem TokenLine.unique (h : TokenLine line token id) (h' : TokenLine line token' id') :
    token = token' ∧ id = id' := by
  obtain ⟨rest, hfields, -, hrole⟩ := h
  obtain ⟨rest', hfields', -, hrole'⟩ := h'
  obtain ⟨subject, admin⟩ := id
  obtain ⟨subject', admin'⟩ := id'
  rw [hfields] at hfields'
  obtain ⟨rfl, htail⟩ := List.cons.inj hfields'
  obtain ⟨hsubject, rfl⟩ := List.cons.inj htail
  have hadmin : admin = admin' := by
    rw [hrole] at hrole'
    cases admin <;> cases admin' <;> simp_all
  exact ⟨rfl, congrArg₂ Identity.mk hsubject hadmin⟩

theorem TokenLine.not_skipped (h : TokenLine line token id) : ¬ SkippedLine line := by
  obtain ⟨rest, hfields, hcomment, -⟩ := h
  intro hskipped
  exact hcomment (hskipped token (by rw [hfields]; rfl))

theorem skippedLine_iff : SkippedLine line ↔ trimSpace line.toList = [] ∨ (trimSpace line.toList).head? = some '#' := by
  rw [SkippedLine, ← fields_trimSpace]
  cases htrim : trimSpace line.toList with
  | nil => simp [fields]
  | cons c rest =>
    obtain ⟨word, words, hfields⟩ := fields_cons rest (head_trimSpace htrim)
    simp [hfields]

/-! ## Files -/

/-- The lines have entries, are comments or are blank, and no token has two entries. -/
structure ValidTokenFile (lines : List String) : Prop where
  entries : ∀ line ∈ lines, SkippedLine line ∨ ∃ token id, TokenLine line token id
  distinct : lines.Pairwise fun line line' => ∀ token id id', TokenLine line token id → ¬ TokenLine line' token id'

def Grants (lines : List String) (tokens : Dict String Identity) : Prop :=
  ∀ token id, tokens.get token = some id ↔ ∃ line ∈ lines, TokenLine line token id

section
variable {lines : List String} {tokens : Dict String Identity} {n : Nat}

theorem atLine (n : Nat) (text : String) :
    "line " ++ toString n ++ (": " ++ text) = "line " ++ toString n ++ ": " ++ text := String.append_assoc.symm

/-- What a round does: nothing at a line without entry, enter what the line has, or fail. -/
theorem parseTokenLine_cases (quote : String → String) (tokens : Dict String Identity) (line : String) (n : Nat) :
    SkippedLine line ∧ parseTokenLine quote tokens (line, n) = .ok tokens ∨
    (∃ token id, TokenLine line token id ∧ tokens.get token = none ∧
      parseTokenLine quote tokens (line, n) = .ok (tokens.set token id)) ∨
    ¬ SkippedLine line ∧ (∀ token id, TokenLine line token id → (tokens.get token).isSome) ∧
      ∃ text, parseTokenLine quote tokens (line, n) = .error ("line " ++ toString n ++ ": " ++ text) := by
  unfold parseTokenLine
  by_cases hskipped : SkippedLine line
  · exact .inl ⟨hskipped, if_pos (skippedLine_iff.mp hskipped)⟩
  right
  simp only [if_neg (mt skippedLine_iff.mpr hskipped), fields_trimSpace]
  have hcomment : ∀ {token words}, fields line.toList = token :: words → token.toList.head? ≠ some '#' := by
    intro token words hfields hhash
    refine hskipped fun word hword => ?_
    rw [hfields] at hword
    cases hword
    exact hhash
  split
  · next token subject rest hfields =>
    have htoken : ∀ {token' id'}, TokenLine line token' id' → token' = token ∧
        rest.head?.getD "user" = if id'.admin then "admin" else "user" := by
      rintro token' id' ⟨rest', hfields', -, hrole⟩
      rw [hfields] at hfields'
      obtain ⟨rfl, htail⟩ := List.cons.inj hfields'
      obtain ⟨-, rfl⟩ := List.cons.inj htail
      exact ⟨rfl, hrole⟩
    by_cases hrole : rest.head?.getD "user" ≠ "user" ∧ rest.head?.getD "user" ≠ "admin"
    · refine .inr ⟨hskipped, fun token' id' h => ?_,
        "role must be 'user' or 'admin', got " ++ quote (rest.head?.getD "user"), ?_⟩
      · have hrole' := (htoken h).2
        cases hadmin : id'.admin <;> simp [hadmin] at hrole' <;> simp [hrole'] at hrole
      · rw [if_pos hrole, ← String.append_assoc, ← atLine]
        rfl
    · rw [if_neg hrole]
      by_cases hdup : (tokens.get token).isSome
      · refine .inr ⟨hskipped, fun token' id' h => (htoken h).1 ▸ hdup, "duplicate token", ?_⟩
        rw [if_pos hdup, ← atLine]
        rfl
      · refine .inl ⟨token, ⟨subject, rest.head?.getD "user" = "admin"⟩, ⟨rest, hfields, hcomment hfields, ?_⟩,
          Option.not_isSome_iff_eq_none.mp hdup, if_neg hdup⟩
        by_cases hadmin : rest.head?.getD "user" = "admin"
        · simp [hadmin]
        · simp only [hadmin, decide_false, Bool.false_eq_true, if_false]
          by_contra huser
          exact hrole ⟨huser, hadmin⟩
  · next hshort =>
    refine .inr ⟨hskipped, fun token id h => ?_, "expected at least <token> <subject>", ?_⟩
    · obtain ⟨rest, hfields, -⟩ := h
      exact (hshort _ _ _ hfields).elim
    · rw [← atLine]
      rfl

theorem ValidTokenFile.concat (h : ValidTokenFile lines)
    (hentry : SkippedLine line ∨ ∃ token id, TokenLine line token id)
    (hnew : ∀ token id id', TokenLine line token id → ∀ line' ∈ lines, ¬ TokenLine line' token id') :
    ValidTokenFile (lines ++ [line]) where
  entries := by
    intro line' hline'
    obtain hline' | hline' := List.mem_append.mp hline'
    · exact h.entries line' hline'
    · exact List.mem_singleton.mp hline' ▸ hentry
  distinct := by
    rw [List.pairwise_append]
    refine ⟨h.distinct, List.pairwise_singleton _ _, fun line' hline' a ha token id id' hold hadded => ?_⟩
    rw [List.mem_singleton.mp ha] at hadded
    exact hnew token id' id hadded line' hline' hold

theorem exists_mem_concat {l : List α} {P : α → Prop} : (∃ b ∈ l ++ [a], P b) ↔ (∃ b ∈ l, P b) ∨ P a := by
  simp only [List.mem_append, List.mem_singleton, or_and_right, exists_or, exists_eq_left]

theorem Grants.skip (h : Grants lines tokens) (hskipped : SkippedLine line) : Grants (lines ++ [line]) tokens := by
  intro token id
  rw [h token id, exists_mem_concat]
  exact (or_iff_left fun hentry => hentry.not_skipped hskipped).symm

theorem Grants.set (h : Grants lines tokens) (hentry : TokenLine line token id) (hnew : tokens.get token = none) :
    Grants (lines ++ [line]) (tokens.set token id) := by
  intro token' id'
  rw [Dict.get_set, exists_mem_concat, ← h token' id']
  split
  · next heq =>
    subst heq
    rw [hnew, Option.some.injEq]
    exact ⟨fun hid => .inr (hid ▸ hentry), fun hentry' => (hentry.unique (hentry'.resolve_left (by simp))).2⟩
  · next hne => exact (or_iff_left fun hentry' => hne (hentry.unique hentry').1.symm).symm

theorem ValidTokenFile.take (h : ValidTokenFile lines) (n : Nat) : ValidTokenFile (lines.take n) :=
  ⟨fun line hline => h.entries line (List.mem_of_mem_take hline), h.distinct.sublist (List.take_sublist n lines)⟩

/-- The first line at which the file stops to be valid. -/
structure InvalidAt (lines : List String) (n : Nat) : Prop where
  lt : n < lines.length
  before : ValidTokenFile (lines.take n)
  after : ¬ ValidTokenFile (lines.take (n + 1))

theorem InvalidAt.append (h : InvalidAt lines n) (rest : List String) : InvalidAt (lines ++ rest) n where
  lt := by
    rw [List.length_append]
    exact Nat.lt_add_right _ h.lt
  before := by
    rw [List.take_append_of_le_length (Nat.le_of_lt h.lt)]
    exact h.before
  after := by
    rw [List.take_append_of_le_length h.lt]
    exact h.after

theorem parseTokenLines_cases (quote : String → String) (lines : List String) :
    (∃ tokens, (lines.zipIdx 1).foldlM (parseTokenLine quote) .empty = .ok tokens ∧ ValidTokenFile lines ∧
      Grants lines tokens) ∨
    ∃ n text, (lines.zipIdx 1).foldlM (parseTokenLine quote) .empty =
      .error ("line " ++ toString (n + 1) ++ ": " ++ text) ∧ InvalidAt lines n := by
  induction lines using List.reverseRecOn with
  | nil =>
    refine .inl ⟨.empty, rfl, ⟨fun line hline => (by cases hline), .nil⟩, fun token id => ?_⟩
    simp [Dict.get_empty]
  | append_singleton lines line ih =>
    rw [List.zipIdx_append, List.foldlM_append, List.zipIdx_singleton]
    obtain ⟨tokens, hfold, hvalid, hgrants⟩ | ⟨n, text, hfold, hinvalid⟩ := ih
    · rw [hfold]
      have hround : ∀ x, parseTokenLine quote tokens (line, 1 + lines.length) = x →
          ([(line, 1 + lines.length)].foldlM (parseTokenLine quote) tokens) = x := by
        rintro x rfl
        rw [List.foldlM_cons]
        cases parseTokenLine quote tokens (line, 1 + lines.length) <;> rfl
      have hknown : ∀ {token}, (tokens.get token).isSome → ∃ line' ∈ lines, ∃ id', TokenLine line' token id' := by
        intro token hsome
        obtain ⟨id', hget⟩ := Option.isSome_iff_exists.mp hsome
        obtain ⟨line', hline', hentry⟩ := (hgrants token id').mp hget
        exact ⟨line', hline', id', hentry⟩
      obtain ⟨hskipped, hstep⟩ | ⟨token, id, hentry, hnew, hstep⟩ | ⟨hskipped, hdup, text, hstep⟩ :=
        parseTokenLine_cases quote tokens line (1 + lines.length)
      · refine .inl ⟨tokens, hround _ hstep, hvalid.concat (.inl hskipped) fun token id id' hentry => ?_,
          hgrants.skip hskipped⟩
        exact (hentry.not_skipped hskipped).elim
      · refine .inl ⟨tokens.set token id, hround _ hstep, hvalid.concat (.inr ⟨token, id, hentry⟩) ?_,
          hgrants.set hentry hnew⟩
        intro token' id₁ id' hentry' line' hline' hold
        obtain ⟨rfl, rfl⟩ := hentry.unique hentry'
        cases hnew.symm.trans ((hgrants token id').mpr ⟨line', hline', hold⟩)
      · refine .inr ⟨lines.length, text, ?_, ?_, ?_, ?_⟩
        · rw [Nat.add_comm lines.length 1]
          exact hround _ hstep
        · simp
        · rw [List.take_left']
          · exact hvalid
          · rfl
        · rw [List.take_of_length_le (by simp)]
          intro hvalid'
          obtain hskip | ⟨token, id, hentry⟩ := hvalid'.entries line (by simp)
          · exact hskipped hskip
          · obtain ⟨line', hline', id', hold⟩ := hknown (hdup token id hentry)
            exact (List.pairwise_append.mp hvalid'.distinct).2.2 line' hline' line
              (List.mem_singleton_self _) token id' id
              hold hentry
    · rw [hfold]
      exact .inr ⟨n, text, rfl, hinvalid.append _⟩

end

/-- **Token files are read exactly.** A file that is read to its end is accepted if and only if each of its lines has
an entry, is a comment or is blank, and no token has two entries; the tokens are then those of the entries. The error
otherwise names the first line at which the file stops to be so. -/
theorem parseTokenFile_exact (quote : String → String) (lines : List String) :
    ((∃ tokens, parseTokenFile quote ⟨lines, none⟩ = .ok tokens) ↔ ValidTokenFile lines) ∧
    (∀ tokens, parseTokenFile quote ⟨lines, none⟩ = .ok tokens → Grants lines tokens) ∧
    ∀ e, parseTokenFile quote ⟨lines, none⟩ = .error e →
      ∃ n text, e = "line " ++ toString (n + 1) ++ ": " ++ text ∧ InvalidAt lines n := by
  have hparse : parseTokenFile quote ⟨lines, none⟩ = (lines.zipIdx 1).foldlM (parseTokenLine quote) .empty := by
    rw [parseTokenFile]
    cases (lines.zipIdx 1).foldlM (parseTokenLine quote) .empty <;> rfl
  rw [hparse]
  obtain ⟨tokens, hfold, hvalid, hgrants⟩ | ⟨n, text, hfold, hinvalid⟩ := parseTokenLines_cases quote lines
  · rw [hfold]
    refine ⟨⟨fun _ => hvalid, fun _ => ⟨tokens, rfl⟩⟩, fun tokens' h => ?_, fun e h => ?_⟩
    · cases h
      exact hgrants
    · cases h
  · rw [hfold]
    refine ⟨⟨fun h => ?_, fun hvalid => (hinvalid.after (hvalid.take _)).elim⟩, fun tokens h => ?_, fun e h => ?_⟩
    · obtain ⟨tokens, h⟩ := h
      cases h
    · cases h
    · cases h
      exact ⟨n, text, rfl, hinvalid⟩

/-! ## Tokens of requests -/

def Bears (authz : Authorization) (token : String) : Prop := ∃ rest, authz = some (("Bearer " ++ token) :: rest)

theorem authenticate_tokenAuth {authz : Authorization} {tokens : Dict String Identity} :
    (Authenticator.tokenAuth tokens).authenticate authz = .ok id ↔
      ∃ token, Bears authz token ∧ tokens.get token = some id := by
  constructor
  · intro h
    unfold Authenticator.authenticate at h
    split at h
    · next heq => cases heq
    · cases h
    · cases h
    · next heq =>
      cases heq
      split at h
      · next value rest hbearer =>
        obtain ⟨tail, htail⟩ := List.isPrefixOf_iff_prefix.mp hbearer
        split at h
        · cases h
        · next hget =>
          cases h
          rw [← htail, List.drop_left] at hget
          refine ⟨String.ofList tail, ⟨rest, ?_⟩, hget⟩
          refine congrArg (fun value => some (value :: rest)) (String.toList_injective ?_)
          rw [← htail, String.toList_append]
          exact congrArg (bearer ++ ·) String.toList_ofList.symm
      · cases h
  · rintro ⟨token, ⟨rest, rfl⟩, hget⟩
    have hbearer : ("Bearer " ++ token).toList = bearer ++ token.toList := String.toList_append
    simp [Authenticator.authenticate, hbearer, hget]

theorem buildAuthenticator_eq_ok {quote : String → String} {scan : Scan} {auth : Authenticator}
    (h : buildAuthenticator quote (some (.ok scan)) = .ok auth) :
    ∃ tokens, auth = .tokenAuth tokens ∧ Grants scan.lines tokens := by
  obtain ⟨tokens, hparse, h⟩ := except_bind_eq_ok.mp h
  have hparse := mapError_eq_ok.mp hparse
  refine ⟨tokens, ?_, ?_⟩
  · dsimp only at h
    split at h
    · cases h
    · cases h
      rfl
  · obtain ⟨tokens', hfold, h⟩ := except_bind_eq_ok.mp hparse
    have htokens : tokens' = tokens := by
      split at h
      · cases h
      · exact Except.ok.inj h
    obtain ⟨tokens₁, hfold', -, hgrants⟩ | ⟨n, text, hfold', -⟩ := parseTokenLines_cases quote scan.lines
    · cases hfold'.symm.trans hfold
      exact htokens ▸ hgrants
    · cases hfold'.symm.trans hfold

/-! ## Requests -/

namespace Server

variable {s : Server}

/-- The call that a request makes, if the interceptor and the checks of its handler let it through. -/
def callFor (s : Server) (auth : Authenticator) (req : Authorization × Rpc) : Option Call :=
  match auth.authenticate req.1 with
  | .error _ => none
  | .ok id => s.callOf id req.2

theorem snd_intercept (s : Server) (auth : Authenticator) (authz : Authorization) (rpc : Rpc) (w : World) :
    (s.intercept auth authz rpc w).2 = (s.callFor auth (authz, rpc)).elim w fun c => (s.registry.exec c w).2 := by
  unfold intercept callFor
  cases auth.authenticate authz with
  | error e => rfl
  | ok id => exact snd_handle s id rpc w

theorem mem_callFor {auth : Authenticator} {req : Authorization × Rpc} {c : Call} :
    c ∈ s.callFor auth req ↔ ∃ id, auth.authenticate req.1 = .ok id ∧ c ∈ s.callOf id req.2 := by
  unfold callFor
  cases auth.authenticate req.1 with
  | error e => simp
  | ok id => simp

theorem callOf_anonymous (hlocked : s.allowAnonymousWrites = false) (rpc : Rpc) :
    s.callOf anonymousIdentity rpc = none := by
  have hwriter : ∀ {x : Unit → Except Status Unit}, (s.requireWriter anonymousIdentity >>= x) ≠ .ok () := by
    intro x h
    obtain ⟨_, hwriter, -⟩ := except_bind_eq_ok.mp h
    simp [requireWriter, hlocked] at hwriter
  rw [Option.eq_none_iff_forall_ne_some]
  intro c hc
  cases rpc with
  | publish | promote | discardStaging | createNamespace | setNamespaceParent | rebase =>
    exact hwriter (mem_whenOk.mp hc).1
  | rollback =>
    obtain ⟨_, hcheck, -⟩ := except_bind_eq_ok.mp (mem_whenOk.mp hc).1
    exact hwriter hcheck
  | _ => cases hc

end Server

/-! ## Calls that do not publish into a namespace -/

/-- The operation stores no version of the namespace. -/
def Op.PublishesOutside (ns : String) : Op → Prop
  | .store (.putVersion ns' ..) => ns' ≠ ns
  | _ => True

theorem Call.MayPerform.publishesOutside {c : Call} {op : Op} (hop : c.MayPerform op) (hc : ∀ sc, ¬ c.Publishes ns sc) :
    op.PublishesOutside ns := by
  unfold Op.PublishesOutside
  split
  · rintro rfl
    cases c with
    | publish | rebase => exact hop.elim id fun hstores => hc _ ⟨hstores.1.symm, hstores.2.symm⟩
    | _ => exact hop.putsNothing fun _ _ => id
  · trivial

/-! ## What requests can change -/

theorem World.MayFail.versions_outside {op : Op} {res : op.Res} {w w' : World} (hop : op.PublishesOutside ns)
    (hstep : World.MayFail op w res w') (sc : String) (v : Nat) :
    w'.store.versions.get (ns, sc, v) = w.store.versions.get (ns, sc, v) := by
  obtain rfl | rfl := hstep.state
  · cases op with
    | mem op => rfl
    | store op =>
      change (w.store.perform op).2.versions.get _ = _
      by_cases hput : ∀ ns sc v row, op ≠ .putVersion ns sc v row
      · rw [Store.versions_perform hput]
      · push Not at hput
        obtain ⟨ns', sc', v', row, rfl⟩ := hput
        simp only [Store.perform, Store.putVersion]
        split
        · rfl
        · refine Dict.get_set_of_ne _ _ ?_
          rintro ⟨⟩
          exact hop rfl
  · rfl

/-- **What a file of tokens grants.** A server that was started with the file and does not take anonymous writes serves
requests concurrently. If none of them bears the token of a line with an identity that is not the anonymous one, nothing
changes. If none bears the token of a line with the role `admin`, no version of the builtins is stored. -/
theorem access_granted {s : Server} {quote : String → String} {scan : Scan} {auth : Authenticator}
    (hauth : buildAuthenticator quote (some (.ok scan)) = .ok auth) (hlocked : s.allowAnonymousWrites = false)
    {reqs : List (Authorization × Rpc)} {w : World} {p : Pool registryInterface (Except Err Reply) World}
    (hreach : Pool.Reach World.MayFail (fun _ _ _ _ => True) (s.registry.pool (reqs.filterMap (s.callFor auth)) w) p) :
    ((∀ req ∈ reqs, ∀ line ∈ scan.lines, ∀ token id, TokenLine line token id → id ≠ anonymousIdentity →
      ¬ Bears req.1 token) → p.state = w) ∧
    ((∀ req ∈ reqs, ∀ line ∈ scan.lines, ∀ token id, TokenLine line token id → id.admin = true →
      ¬ Bears req.1 token) → ∀ sc v, p.state.store.versions.get (builtinsNamespace, sc, v) =
        w.store.versions.get (builtinsNamespace, sc, v)) := by
  obtain ⟨tokens, rfl, hgrants⟩ := buildAuthenticator_eq_ok hauth
  -- who makes a call has the identity of a line
  have hcaller : ∀ c ∈ reqs.filterMap (s.callFor (.tokenAuth tokens)), ∃ req ∈ reqs, ∃ line ∈ scan.lines, ∃ token id,
      TokenLine line token id ∧ Bears req.1 token ∧ c ∈ s.callOf id req.2 := by
    intro c hc
    obtain ⟨req, hreq, hcallFor⟩ := List.mem_filterMap.mp hc
    obtain ⟨id, hid, hcall⟩ := Server.mem_callFor.mp hcallFor
    obtain ⟨token, hbears, hget⟩ := authenticate_tokenAuth.mp hid
    obtain ⟨line, hline, hentry⟩ := (hgrants token id).mp hget
    exact ⟨req, hreq, line, hline, token, id, hentry, hbears, hcall⟩
  refine ⟨fun hnone => ?_, fun hnone => ?_⟩
  · have hcalls : reqs.filterMap (s.callFor (.tokenAuth tokens)) = [] := by
      refine List.eq_nil_iff_forall_not_mem.mpr fun c hc => ?_
      obtain ⟨req, hreq, line, hline, token, id, hentry, hbears, hcall⟩ := hcaller c hc
      by_cases hid : id = anonymousIdentity
      · rw [hid, Server.callOf_anonymous hlocked] at hcall
        cases hcall
      · exact hnone req hreq line hline token id hentry hid hbears
    rw [hcalls] at hreach
    exact Pool.Reach.upholds (A := fun _ => False) (C := fun _ _ => True) (J := fun w' => w' = w)
      (fun hop => hop.elim) (fun t ht => by cases ht) rfl hreach
  · refine Pool.Reach.upholds (A := Op.PublishesOutside builtinsNamespace) (C := fun _ _ => True)
      (J := fun w' => ∀ sc v, w'.store.versions.get (builtinsNamespace, sc, v) =
        w.store.versions.get (builtinsNamespace, sc, v)) (fun hop hw hstep => ⟨trivial, fun sc v => ?_⟩) ?_
      (fun _ _ => rfl) hreach
    · exact (hstep.versions_outside hop sc v).trans (hw sc v)
    · intro t ht
      obtain ⟨c, hc, rfl⟩ := List.mem_map.mp ht
      obtain ⟨req, hreq, line, hline, token, id, hentry, hbears, hcall⟩ := hcaller c hc
      have hadmin : id.admin = false := by
        by_contra hadmin
        exact hnone req hreq line hline token id hentry (Bool.eq_true_of_not_eq_false hadmin) hbears
      have hguard := fun {op} (hop : c.MayPerform op) =>
        hop.publishesOutside (Server.not_publishes_of_callOf hadmin hcall)
      exact Prog.Relies.mono (Prog.Relies.weaken (fun _ => hguard) (s.registry.run_performs c)) fun _ _ => trivial

namespace Sample

def tokenFile : Scan := { lines := ["# token subject role", "t1\talice  admin", "", "t2 bob"] }

/-- A service that takes writes of known callers only. -/
def locked : Server := { service registry with allowAnonymousWrites := false }

def bobs : Authorization := some ["Bearer t2"]

/-- A publish without a token, one of `bob`, and one of `bob` into the builtins. -/
def attempts : List (Authorization × Rpc) :=
  [(none, .publish { namespaceID := "n", schemaID := "s", sources := Dict.empty.set "a.proto" [1] }),
    (bobs, .publish { namespaceID := "n", schemaID := "s", sources := Dict.empty.set "a.proto" [2] }),
    (bobs, .publish (builtin [3]))]

theorem tokenLine_admin {line token : String} {id : Identity} (hline : line ∈ tokenFile.lines)
    (h : TokenLine line token id) (hadmin : id.admin = true) : token = "t1" := by
  obtain ⟨rest, hfields, -, hrole⟩ := h
  rw [hadmin, if_pos rfl] at hrole
  have hwords : tokenFile.lines.map (fun line => fields line.toList) =
      [["#", "token", "subject", "role"], ["t1", "alice", "admin"], [], ["t2", "bob"]] := by decide +kernel
  have hmem := List.mem_map_of_mem (f := fun line => fields line.toList) hline
  rw [hwords, hfields] at hmem
  simp only [List.mem_cons, List.not_mem_nil, or_false, List.cons.injEq, reduceCtorEq, false_or] at hmem
  obtain ⟨-, -, rfl⟩ | ⟨rfl, -⟩ | ⟨-, -, rfl⟩ := hmem
  · exact absurd hrole (by decide)
  · rfl
  · exact absurd hrole (by decide)

end Sample

/-- `bob` publishes a version, and does not get into the builtins. -/
theorem access_granted_bob : ∃ auth p, buildAuthenticator (fun text => text) (some (.ok Sample.tokenFile)) = .ok auth ∧
    Pool.Reach World.MayFail (fun _ _ _ _ => True)
      (Sample.registry.pool (Sample.attempts.filterMap (Sample.locked.callFor auth)) .empty) p ∧
    (p.state.store.versions.get ("n", "s", 1)).isSome ∧
    ∀ sc v, p.state.store.versions.get (builtinsNamespace, sc, v) = none := by
  have hauth : ∃ auth, buildAuthenticator (fun text => text) (some (.ok Sample.tokenFile)) = .ok auth ∧
      Sample.attempts.filterMap (Sample.locked.callFor auth) = [Sample.publish [2]] := ⟨_, rfl, rfl⟩
  obtain ⟨auth, hauth, hcalls⟩ := hauth
  have hrun : ∃ p, Pool.Reach World.Executes (fun _ _ _ _ => True)
    (Sample.registry.pool [Sample.publish [2]] .empty) p ∧
      (p.state.store.versions.get ("n", "s", 1)).isSome = true :=
    World.exists_reach (List.replicate 15 0) (Pool.along_true _ _ _) ⟨_, rfl, rfl⟩
  obtain ⟨p, hexecutes, hstored⟩ := hrun
  have hreach := hexecutes.mono World.Executes.mayFail
  rw [← hcalls] at hreach
  refine ⟨auth, p, hauth, hreach, hstored, ?_⟩
  refine (access_granted (s := Sample.locked) hauth rfl hreach).2
    fun req hreq line hline token id hentry hadmin hbears => ?_
  obtain ⟨rest, hauthz⟩ := hbears
  rw [Sample.tokenLine_admin hline hentry hadmin] at hauthz
  have hheaders : ∀ req ∈ Sample.attempts, req.1 = none ∨ req.1 = some ["Bearer t2"] := by
    simp [Sample.attempts, Sample.bobs]
  obtain hnone | hsome := hheaders req hreq
  · cases hnone.symm.trans hauthz
  · have hheader := (List.cons.inj (Option.some.inj (hsome.symm.trans hauthz))).1
    exact absurd hheader (by decide)

end ProtoRegistry
