import Mathlib.Data.List.Basic

/-! `path.Clean` of the standard library, on which the server's check of file names rests. The loop
reads the path from left to right and writes the canonical form into a buffer. -/

namespace ProtoRegistry.Path

structure Buffer where
  /-- What has been written, the last character first. -/
  out : List Char := []
  /-- How much of it a `..` must leave in place: the leading slash, or the leading `../../..`. -/
  dotdot : Nat := 0
  deriving Repr, DecidableEq

/-- `out.w--`, and on to the last slash that may be removed. -/
def backtrack (dotdot : Nat) : List Char → List Char
  | [] => []
  | c :: out => if dotdot < out.length ∧ c ≠ '/' then backtrack dotdot out else out

/-- A `..` element. -/
def Buffer.parent (rooted : Bool) (b : Buffer) : Buffer :=
  if b.dotdot < b.out.length then
    { b with out := backtrack b.dotdot b.out }
  else if rooted then
    b
  else
    -- cannot backtrack, but not rooted
    let out := '.' :: '.' :: if b.out = [] then [] else '/' :: b.out
    ⟨out, out.length⟩

/-- A real path element, after a slash if one is needed. -/
def Buffer.element (rooted : Bool) (b : Buffer) (name : List Char) : Buffer :=
  let out := if b.out.length = (if rooted then 1 else 0) then b.out else '/' :: b.out
  { b with out := name.reverse ++ out }

/-- One round of the loop, on the part of the path that is still to be read. -/
def cleanStep (rooted : Bool) (b : Buffer) (path : List Char) : Buffer × List Char :=
  let name := path.takeWhile (· ≠ '/')
  if name = [] then
    (b, path.drop 1)
  else if name = ['.'] then
    (b, path.drop 1)
  else if name = ['.', '.'] then
    (b.parent rooted, path.drop 2)
  else
    (b.element rooted name, path.drop name.length)

/-- The loop. Every round reads at least one character, so that `rounds` may be the length of the
path. -/
def cleanLoop (rooted : Bool) : Nat → Buffer → List Char → Buffer
  | _, b, [] => b
  | 0, b, _ => b
  | rounds + 1, b, path =>
    cleanLoop rooted rounds (cleanStep rooted b path).1 (cleanStep rooted b path).2

def clean (path : String) : String :=
  if path = "" then
    "."
  else
    let rooted := path.toList.head? = some '/'
    let b := if rooted then
        cleanLoop true path.length ⟨['/'], 1⟩ (path.toList.drop 1)
      else
        cleanLoop false path.length {} path.toList
    if b.out = [] then "." else String.ofList b.out.reverse

end ProtoRegistry.Path
