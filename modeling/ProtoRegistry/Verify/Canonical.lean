import ProtoRegistry.Theory.Delimited
import ProtoRegistry.Verify.Footprint
import ProtoRegistry.Verify.Sources

/-!
# The canonical text of a file

`writeCanonical` writes a space after each token. A string may have spaces inside, but it begins with a quote and
ends at the next quote of this kind that no backslash escapes, so the text still tells where each token ends. Files
share a blob exactly when they differ in comments and white space alone, and what `GetSource` returns for a file is
the file that was published, up to these.
-/

namespace ProtoRegistry
open RegistryM

/-! ## Tokens -/

/-- A token of the source that is neither a comment nor white space. -/
def Token.isCode (t : Token) : Bool := !t.isSynthetic && !t.isSkippable

/-- The token text sequence of a file. -/
def codeTexts (tokens : List Token) : List String := (tokens.filter (·.isCode)).map (·.text)

/-- The streams differ in comments and white space alone. -/
inductive SameCode : List Token → List Token → Prop where
  | nil : SameCode [] []
  | left (ht : t.isCode = false) (h : SameCode ts us) : SameCode (t :: ts) us
  | right (hu : u.isCode = false) (h : SameCode ts us) : SameCode ts (u :: us)
  | code (ht : t.isCode = true) (hu : u.isCode = true) (htext : t.text = u.text) (h : SameCode ts us) :
    SameCode (t :: ts) (u :: us)

section
variable {t : Token} {tokens ts us : List Token}

theorem codeTexts_cons_of_code (ht : t.isCode = true) : codeTexts (t :: tokens) = t.text :: codeTexts tokens := by
  rw [codeTexts, List.filter_cons_of_pos ht]
  rfl

theorem codeTexts_cons_of_skipped (ht : t.isCode = false) : codeTexts (t :: tokens) = codeTexts tokens := by
  rw [codeTexts, List.filter_cons_of_neg (by rw [ht]; exact Bool.false_ne_true)]
  rfl

theorem SameCode.codeTexts_eq (h : SameCode ts us) : codeTexts ts = codeTexts us := by
  induction h with
  | nil => rfl
  | left ht _ ih => rw [codeTexts_cons_of_skipped ht, ih]
  | right hu _ ih => rw [codeTexts_cons_of_skipped hu, ih]
  | code ht hu htext _ ih => rw [codeTexts_cons_of_code ht, codeTexts_cons_of_code hu, htext, ih]

theorem sameCode_iff : SameCode ts us ↔ codeTexts ts = codeTexts us := by
  refine ⟨SameCode.codeTexts_eq, fun h => ?_⟩
  induction ts generalizing us with
  | nil =>
    induction us with
    | nil => exact .nil
    | cons u us ih =>
      cases hu : u.isCode with
      | false => exact .right hu (ih (h.trans (codeTexts_cons_of_skipped hu)))
      | true =>
        rw [codeTexts_cons_of_code hu] at h
        cases h
  | cons t ts iht =>
    cases ht : t.isCode with
    | false => exact .left ht (iht ((codeTexts_cons_of_skipped ht).symm.trans h))
    | true =>
      -- the code that `t` is compared with comes after what is skipped
      induction us with
      | nil =>
        rw [codeTexts_cons_of_code ht] at h
        cases h
      | cons u us ihu =>
        cases hu : u.isCode with
        | false => exact .right hu (ihu (h.trans (codeTexts_cons_of_skipped hu)))
        | true =>
          rw [codeTexts_cons_of_code ht, codeTexts_cons_of_code hu] at h
          obtain ⟨htext, hrest⟩ := List.cons.inj h
          exact .code ht hu htext (iht hrest)

end

/-! ## What the lexer returns -/

def quotes : List Char := ['"', '\'']

/-- The inside of a literal between two quotes `q`: a quote of this kind and a backslash come after a backslash. -/
inductive Escaped (q : Char) : List Char → Prop where
  | nil : Escaped q []
  | plain (hquote : c ≠ q) (hbackslash : c ≠ '\\') (h : Escaped q text) : Escaped q (c :: text)
  | escape (c : Char) (h : Escaped q text) : Escaped q ('\\' :: c :: text)

/-- The text of a token: that of a string, or one without spaces and quotes. -/
inductive TokenText : List Char → Prop where
  | bare (hne : text ≠ []) (hplain : ∀ c ∈ text, c ≠ ' ' ∧ c ∉ quotes) : TokenText text
  | literal (hq : q ∈ quotes) (hbody : Escaped q body) : TokenText (q :: (body ++ [q]))

/-- The tokens are as the lexer makes them. -/
def Lexed (tokens : List Token) : Prop := ∀ t ∈ tokens, t.isCode → TokenText t.text.toList

theorem TokenText.ne_nil {text : List Char} (h : TokenText text) : text ≠ [] := by
  cases h with
  | bare hne _ => exact hne
  | literal _ _ => exact List.cons_ne_nil _ _

/-! ## Where a token ends -/

inductive ScanState where
  | start
  | bare
  | quoted (q : Char)
  /-- After a backslash between the quotes. -/
  | escaped (q : Char)
  /-- After the closing quote. -/
  | closed

/-- Reads a token and the space after it. -/
def tokenScanner : Scanner Char ScanState where
  start := .start
  step
    | .start, c => some (if c ∈ quotes then .quoted c else .bare)
    | .bare, c => if c = ' ' then none else some .bare
    | .quoted q, c => some (if c = q then .closed else if c = '\\' then .escaped q else .quoted q)
    | .escaped q, _ => some (.quoted q)
    | .closed, _ => none

theorem reads_bare {text : List Char} (h : ∀ c ∈ text, c ≠ ' ') : tokenScanner.Reads .bare (text ++ [' ']) := by
  induction text with
  | nil => exact .last rfl
  | cons c text ih =>
    obtain ⟨hc, htext⟩ := List.forall_mem_cons.mp h
    exact .more (if_neg hc) (ih htext)

theorem reads_escaped (hq : q ∈ quotes) (h : Escaped q body) : tokenScanner.Reads (.quoted q) (body ++ [q, ' ']) := by
  induction h with
  | nil => exact .more (congrArg some (if_pos rfl)) (.last rfl)
  | plain hquote hbackslash _ ih =>
    exact .more (congrArg some ((if_neg hquote).trans (if_neg hbackslash))) ih
  | escape c _ ih =>
    have hne : '\\' ≠ q := by
      rintro rfl
      exact absurd hq (by decide)
    exact .more (congrArg some ((if_neg hne).trans (if_pos rfl))) (.more rfl ih)

/-- A token and the space after it mark their own end. -/
theorem TokenText.reads {text : List Char} (h : TokenText text) :
    tokenScanner.Reads tokenScanner.start (text ++ [' ']) := by
  cases h with
  | bare hne hplain =>
    obtain ⟨c, rest, rfl⟩ := List.exists_cons_of_ne_nil hne
    obtain ⟨⟨-, hc⟩, hrest⟩ := List.forall_mem_cons.mp hplain
    exact .more (congrArg some (if_neg hc)) (reads_bare fun c hc => (hrest c hc).1)
  | literal hq hbody =>
    rw [List.cons_append, List.append_assoc]
    exact .more (congrArg some (if_pos hq)) (reads_escaped hq hbody)

/-! ## The text tells the tokens -/

theorem toList_writeCanonical {tokens : List Token} (h : Lexed tokens) :
    (writeCanonical tokens).toList = ((codeTexts tokens).map fun text => text.toList ++ [' ']).flatten := by
  rw [writeCanonical, String.toList_join]
  induction tokens with
  | nil => rfl
  | cons t tokens ih =>
    obtain ⟨ht, htokens⟩ := List.forall_mem_cons.mp h
    rw [List.map_cons, List.flatMap_cons, ih htokens]
    cases hcode : t.isCode with
    | false =>
      have hskip : (t.isSynthetic || t.isSkippable || t.text.isEmpty) = true := by
        cases hs : t.isSynthetic <;> simp_all [Token.isCode]
      rw [codeTexts_cons_of_skipped hcode, if_pos hskip]
      rfl
    | true =>
      have hne : t.text ≠ "" := fun hnil => (ht hcode).ne_nil (by rw [hnil]; rfl)
      have hkeep : (t.isSynthetic || t.isSkippable || t.text.isEmpty) ≠ true := by
        cases hs : t.isSynthetic <;> simp_all [Token.isCode]
      rw [codeTexts_cons_of_code hcode, if_neg hkeep, String.toList_append]
      rfl

theorem writeCanonical_eq_iff {ts us : List Token} (hts : Lexed ts) (hus : Lexed us) :
    writeCanonical ts = writeCanonical us ↔ codeTexts ts = codeTexts us := by
  rw [← String.toList_inj, toList_writeCanonical hts, toList_writeCanonical hus]
  refine ⟨fun h => ?_, fun h => by rw [h]⟩
  have hwords : ∀ {tokens}, Lexed tokens → ∀ w ∈ (codeTexts tokens).map (fun text => text.toList ++ [' ']),
      tokenScanner.Reads tokenScanner.start w := by
    intro tokens htokens w hw
    obtain ⟨text, htext, rfl⟩ := List.mem_map.mp hw
    obtain ⟨t, ht, rfl⟩ := List.mem_map.mp htext
    obtain ⟨ht, hcode⟩ := List.mem_filter.mp ht
    exact (htokens t ht hcode).reads
  have hsame := tokenScanner.uniquelyDecodable _ _ (hwords hts) (hwords hus) h
  refine List.map_injective_iff.mpr (fun text text' htext => ?_) hsame
  exact String.toList_inj.mp (List.append_cancel_right htext)

-- a quote inside a string that is not escaped could be taken for its end
example : writeCanonical [⟨"\"a\"", false, false⟩, ⟨"\"b\"", false, false⟩] =
    writeCanonical [⟨"\"a\" \"b\"", false, false⟩] := rfl

/-! ## Files that share a blob -/

/-- Every token that the parser returns is as the lexer makes it. -/
def External.Lexes (env : External) : Prop :=
  ∀ path source tokens, env.parse path source = .ok tokens → Lexed tokens

/-- The sources differ in comments and white space alone. -/
def External.Respelled (env : External) (path : String) (source : Bytes) (path' : String) (source' : Bytes) : Prop :=
  ∃ ts us, env.parse path source = .ok ts ∧ env.parse path' source' = .ok us ∧ SameCode ts us

section
variable {env : External}

theorem tokens_of_normalizeAndHash (h : normalizeAndHash env path source = .ok f) :
    ∃ tokens, env.parse path source = .ok tokens ∧ f.blobSHA256 = env.sha256Hex (writeCanonical tokens) := by
  unfold normalizeAndHash at h
  split at h
  · cases h
  · next tokens hparse =>
    cases h
    exact ⟨tokens, hparse, rfl⟩

theorem blobSHA256_eq_iff (hlex : env.Lexes) (hsha : Function.Injective env.sha256Hex)
    (h : normalizeAndHash env path source = .ok f) (h' : normalizeAndHash env path' source' = .ok f') :
    f.blobSHA256 = f'.blobSHA256 ↔ env.Respelled path source path' source' := by
  obtain ⟨ts, hts, hhash⟩ := tokens_of_normalizeAndHash h
  obtain ⟨us, hus, hhash'⟩ := tokens_of_normalizeAndHash h'
  rw [hhash, hhash', hsha.eq_iff, writeCanonical_eq_iff (hlex _ _ _ hts) (hlex _ _ _ hus), ← sameCode_iff]
  refine ⟨fun hsame => ⟨ts, us, hts, hus, hsame⟩, ?_⟩
  rintro ⟨ts', us', hts', hus', hsame⟩
  cases hts.symm.trans hts'
  cases hus.symm.trans hus'
  exact hsame

end

/-- **The canonical text is injective** on token sequences, and so a blob hash tells a source up to comments and
white space. -/
theorem canonical_text_injective :
    (∀ ts us : List Token, Lexed ts → Lexed us →
      ((writeCanonical ts).toUTF8 = (writeCanonical us).toUTF8 ↔ codeTexts ts = codeTexts us)) ∧
    ∀ env : External, env.Lexes → Function.Injective env.sha256Hex →
      ∀ path source f path' source' f', normalizeAndHash env path source = .ok f →
        normalizeAndHash env path' source' = .ok f' →
        (f.blobSHA256 = f'.blobSHA256 ↔ env.Respelled path source path' source') := by
  refine ⟨fun ts us hts hus => ?_, fun env hlex hsha path source f path' source' f' h h' => ?_⟩
  · exact String.toByteArray_inj.trans (writeCanonical_eq_iff hts hus)
  · exact blobSHA256_eq_iff hlex hsha h h'

/-- `a "b \" ' c"`, with a space between the tokens and with comments around the second. -/
def Sample.tokens (commented : Bool) : List Token :=
  let a : Token := ⟨"a", false, false⟩
  let literal : Token := ⟨"\"b \\\" ' c\"", false, false⟩
  if commented then [a, ⟨"/* d */", false, true⟩, literal, ⟨"// e", false, true⟩] else [a, ⟨" ", false, true⟩, literal]

/-- The empty source is the one without comments. -/
def Sample.lexing : External := { Sample.env with parse := fun _ source => .ok (Sample.tokens (!source.isEmpty)) }

theorem Sample.lexed_tokens (commented : Bool) : Lexed (Sample.tokens commented) := by
  have ha : TokenText ['a'] := .bare (List.cons_ne_nil _ _) (List.forall_mem_singleton.mpr (by decide))
  have hbody : Escaped '"' ['b', ' ', '\\', '"', ' ', '\'', ' ', 'c'] := by
    refine .plain (by decide) (by decide) (.plain (by decide) (by decide) (.escape '"' ?_))
    refine .plain (by decide) (by decide) (.plain (by decide) (by decide) ?_)
    exact .plain (by decide) (by decide) (.plain (by decide) (by decide) .nil)
  have hliteral : TokenText ('"' :: (['b', ' ', '\\', '"', ' ', '\'', ' ', 'c'] ++ ['"'])) :=
    .literal (List.mem_cons_self ..) hbody
  have hcode : ∀ t ∈ Sample.tokens commented, t.isCode → t.text = "a" ∨ t.text = "\"b \\\" ' c\"" := by
    cases commented <;> decide
  intro t ht hisCode
  obtain htext | htext := hcode t ht hisCode
  · rw [htext]
    exact ha
  · rw [htext]
    exact hliteral

/-- Two sources that differ in comments. -/
theorem canonical_text_injective_comments :
    Sample.lexing.Lexes ∧ Function.Injective Sample.lexing.sha256Hex ∧
      codeTexts (Sample.tokens false) = codeTexts (Sample.tokens true) ∧
      Sample.lexing.Respelled "a.proto" [] "b.proto" [1] := by
  have hlex : Sample.lexing.Lexes := by
    intro path source tokens hparse
    cases hparse
    exact Sample.lexed_tokens _
  obtain ⟨hinjective, hshared⟩ := canonical_text_injective
  refine ⟨hlex, Function.injective_id, ?_, ?_⟩
  · exact (hinjective _ _ (Sample.lexed_tokens false) (Sample.lexed_tokens true)).mp rfl
  · exact (hshared Sample.lexing hlex Function.injective_id _ _ _ _ _ _ rfl rfl).mp rfl

/-! ## What is served -/

/-- The source is a file that is hashed to `sha`. -/
def External.HashesTo (env : External) (source : Bytes) (sha : String) : Prop :=
  ∃ path f, normalizeAndHash env path source = .ok f ∧ f.blobSHA256 = sha

/-- Each blob is stored under its own hash. -/
def Store.Hashed (s : Store) (env : External) : Prop :=
  ∀ ns sha blob, s.blobs.get (ns, sha) = some blob → env.HashesTo blob sha

def Op.PutsHashed (env : External) : Op → Prop
  | .store (.putBlob _ sha source) => env.HashesTo source sha
  | _ => True

theorem World.hashed_perform {op : Op} {w : World} {env : External} (hop : op.PutsHashed env)
    (hw : w.store.Hashed env) :
    (World.perform op w).2.store.Hashed env := by
  cases op with
  | mem op => exact hw
  | store op =>
    intro ns sha blob hblob
    obtain hold | rfl := Store.of_get_blobs_perform hblob
    · exact hw ns sha blob hold
    · exact hop

namespace Registry

variable {r : Registry} {w : World}

theorem storeVersion_putsHashed {req : PublishRequest}
    (h : r.compiler.compile r.env v req.sources deps tiers builtins = .ok result) :
    Uses (Op.PutsHashed r.env) (r.storeVersion req v' result fingerprint) := by
  refine Uses.bind (Within.forM fun f hf => (uses_store ?_).wrap _) fun _ => ?_
  · exact ⟨f.filename, f, ((Compiler.files_of_compile h).2.mp hf).2, rfl⟩
  · refine ((uses_store trivial).wrap _).bind fun _ _ => ((uses_store trivial).wrap _).bind fun _ _ => ?_
    exact (uses_mem trivial).bind fun _ => .pure _

theorem hashed_exec (hw : w.store.Hashed r.env) (c : Call) : (r.exec c w).2.store.Hashed r.env := by
  refine stored_exec (J := (·.Hashed r.env)) (fun hop hs ns sha blob hblob => ?_) (fun _ hcompile hw => ?_) hw c
  · obtain hold | rfl := Store.of_get_blobs_perform hblob
    · exact hs ns sha blob hold
    · exact hop.elim
  · exact inv_of_uses (J := fun w => w.store.Hashed r.env) (storeVersion_putsHashed hcompile)
      (fun _ _ hop hw => World.hashed_perform hop hw) hw rfl

end Registry

/-- **Every blob of a session is stored under its own hash.** -/
theorem Session.hashed_of_reached {r : Registry} {s : Session} {ok : World → Call → Prop} (h : Reached r ok s) :
    s.world.store.Hashed r.env := by
  induction h with
  | start =>
    intro ns sha blob hblob
    cases hblob
  | call c _ _ ih => exact Registry.hashed_exec ih c
  | restart _ _ ih => exact (r.store_restart _).symm ▸ ih

/-- **The sources of a version are what was published, up to comments and white space**, whatever was published
before and is called later. -/
theorem Server.getSource_same_code (s : Server) {session : Session} {ok : World → Call → Prop}
    (hlex : s.registry.env.Lexes) (hsha : Function.Injective s.registry.env.sha256Hex)
    (hs : Session.Reached s.registry ok session)
    (hpublish : s.registry.exec (.publish req) session.world = (.ok (.published res), w')) (hnew : res.noChange = false)
    (hid : s.checkRead req.namespaceID req.schemaID = .ok ()) (later : List Call) (id : Identity) :
    ∃ sources, (s.handle id (.getSource req.namespaceID req.schemaID res.version) (s.registry.runAll later w')).1 =
        .ok (.source ⟨res.version, sources⟩) ∧
      ∀ path, (sources.get path).isSome = (req.sources.get path).isSome ∧
        ∀ source served, req.sources.get path = some source → sources.get path = some served →
          ∃ path', s.registry.env.Respelled path source path' served := by
  obtain ⟨files, blob, hnames, hfiles, hblob, hreply⟩ := s.getSource_after_publish hpublish hnew hid later id
  have hhashes : ∀ f ∈ files, s.registry.env.HashesTo (blob f.blobSHA256) f.blobSHA256 := by
    intro f hf
    have hstored := hblob f hf
    cases hold : session.world.store.blobs.get (req.namespaceID, f.blobSHA256) with
    | some b =>
      rw [hold, Option.some_or] at hstored
      exact Session.hashed_of_reached hs _ _ _ (hold.trans hstored)
    | none =>
      rw [hold, Option.none_or, Option.map_eq_some_iff] at hstored
      obtain ⟨g, hg, hsource⟩ := hstored
      rw [← hsource]
      exact ⟨g.filename, g, (hfiles.mp (List.mem_of_find?_eq_some hg)).2, by simpa using List.find?_some hg⟩
  have hget : ∀ path b, (readBack files blob).get path = some b ↔
      ∃ f ∈ files, f.filename = path ∧ blob f.blobSHA256 = b := fun path b => get_readBack (hnames ▸ req.sources.nodup)
  refine ⟨_, hreply, fun path => ⟨?_, fun source served hsource hserved => ?_⟩⟩
  · rw [Bool.eq_iff_iff, ← req.sources.mem_keys, ← hnames, List.mem_map, Option.isSome_iff_exists]
    simp only [hget]
    exact ⟨fun ⟨_, f, hf, hpath, _⟩ => ⟨f, hf, hpath⟩, fun ⟨f, hf, hpath⟩ => ⟨_, f, hf, hpath, rfl⟩⟩
  · obtain ⟨f, hf, rfl, rfl⟩ := (hget path served).mp hserved
    obtain ⟨hown, hhash⟩ := hfiles.mp hf
    cases hown.symm.trans hsource
    obtain ⟨path', f', hhash', hsame⟩ := hhashes f hf
    exact ⟨path', (blobSHA256_eq_iff hlex hsha hhash hhash').mp hsame.symm⟩

end ProtoRegistry
