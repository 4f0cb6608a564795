import ProtoRegistry.Model.Server
import Mathlib.Data.List.DropRight

/-!
# Authentication

`server/auth.go` and `buildAuthenticator` of `serve`: the file of bearer tokens, and the interceptor that every
request goes through before it is handled.
-/

namespace ProtoRegistry

/-! ## Words of a line -/

/-- `unicode.IsSpace`. -/
def isSpace (c : Char) : Bool :=
  [0x9, 0xa, 0xb, 0xc, 0xd, 0x20, 0x85, 0xa0, 0x1680, 0x2028, 0x2029, 0x202f, 0x205f, 0x3000].contains c.toNat ||
    (0x2000 ≤ c.toNat && c.toNat ≤ 0x200a)

/-- `strings.TrimSpace`. -/
def trimSpace (text : List Char) : List Char := (text.dropWhile isSpace).rdropWhile isSpace

/-- `strings.Fields`. -/
def fields (text : List Char) : List String := ((text.splitOnP isSpace).filter (· ≠ [])).map String.ofList

/-! ## Token files -/

/-- What a `bufio.Scanner` returns: the lines, and the error it ends with. -/
structure Scan where
  lines : List String
  err : Option String := none

section
variable (quote : String → String)

/-- One round of the loop of `ParseTokenFile`, with the number of the line. `quote` is the verb `%q`. -/
def parseTokenLine (tokens : Dict String Identity) (l : String × Nat) : Except String (Dict String Identity) :=
  let line := trimSpace l.1.toList
  if line = [] ∨ line.head? = some '#' then .ok tokens else
    match fields line with
    | token :: subject :: rest =>
      let role := rest.head?.getD "user"
      if role ≠ "user" ∧ role ≠ "admin" then
        .error ("line " ++ toString l.2 ++ ": role must be 'user' or 'admin', got " ++ quote role)
      else if (tokens.get token).isSome then .error ("line " ++ toString l.2 ++ ": duplicate token")
      else .ok (tokens.set token ⟨subject, role = "admin"⟩)
    | _ => .error ("line " ++ toString l.2 ++ ": expected at least <token> <subject>")

def parseTokenFile (scan : Scan) : Except String (Dict String Identity) := do
  let tokens ← (scan.lines.zipIdx 1).foldlM (parseTokenLine quote) .empty
  match scan.err with
  | some e => .error ("reading token file: " ++ e)
  | none => .ok tokens

end

/-! ## Authenticators -/

inductive Authenticator where
  | noAuth
  | tokenAuth (tokens : Dict String Identity)

/-- `buildAuthenticator`, for the file that `--auth-tokens-file` names, if it does. -/
def buildAuthenticator (quote : String → String) : Option (Except String Scan) → Except String Authenticator
  | none => .ok .noAuth
  | some (.error e) => .error ("opening auth tokens file: " ++ e)
  | some (.ok scan) => do
    let tokens ← (parseTokenFile quote scan).mapError ("parsing auth tokens file: " ++ ·)
    if tokens.keys.isEmpty then throw "auth tokens file is empty"
    return .tokenAuth tokens

/-- The values of the header `authorization` of a request. There are none when it comes without metadata. -/
abbrev Authorization := Option (List String)

def bearer : List Char := "Bearer ".toList

/-- `Authenticate`. The error is the message of a status `Unauthenticated`. -/
def Authenticator.authenticate : Authenticator → Authorization → Except String Identity
  | .noAuth, _ => .ok anonymousIdentity
  | .tokenAuth _, none => .error "missing metadata"
  | .tokenAuth _, some [] => .error "missing authorization header"
  | .tokenAuth tokens, some (authz :: _) =>
    if bearer.isPrefixOf authz.toList then
      match tokens.get (String.ofList (authz.toList.drop bearer.length)) with
      | none => .error "unknown token"
      | some id => .ok id
    else .error "authorization must use Bearer scheme"

inductive Refusal where
  | unauthenticated (message : String)
  | handler (status : Status)

/-- `UnaryAuthInterceptor`, around the handlers. -/
def Server.intercept (s : Server) (auth : Authenticator) (authz : Authorization) (rpc : Rpc) (w : World) :
    Except Refusal Response × World :=
  match auth.authenticate authz with
  | .error e => (.error (.unauthenticated e), w)
  | .ok id => ((s.handle id rpc w).1.mapError .handler, (s.handle id rpc w).2)

end ProtoRegistry
